import Joedb.Interpreted.Atomicity

/-!
# The limit on record ids

A `Database` that is given a maximum record id is protected from a small journal that asks for
a large table. Nothing but an insertion makes a table larger, and what is tested before an
insertion says how large it may become: the keeper and the columns have one place more than
the last id. That is an invariant of whatever is done to the tables, by a caller or by a
replay, whether it throws or not.

The test of `insert_into` is of the id itself. The test of `insert_vector` is of the first id
and of the number of records, each against the maximum, and not of their sum: a vector may end
almost as far behind the maximum as the maximum is from zero.
-/

namespace Joedb

open ByteFile Containers StateExcept

/-! ## Sizes of a keeper -/

namespace ListFreedomKeeper

theorem getSize_useVector (i : Int) (n : Nat) (k : ListFreedomKeeper) :
    (useVector i n k).getSize = k.getSize := by
  induction n generalizing i k with
  | zero => rfl
  | succ n ih => exact ih (i + 1) (k.use i)

theorem getSize_freeVector (i : Int) (n : Nat) (k : ListFreedomKeeper) :
    (freeVector i n k).getSize = k.getSize := by
  induction n generalizing i k with
  | zero => rfl
  | succ n ih => exact ih (i + 1) (k.free i)

end ListFreedomKeeper

namespace FreedomKeeper

variable (k : FreedomKeeper)

theorem getSize_switch {d : DenseFreedomKeeper → Option DenseFreedomKeeper}
    {l : ListFreedomKeeper → ListFreedomKeeper}
    (hd : ∀ k k', d k = some k' → k'.getSize = k.getSize) (hl : ∀ k, (l k).getSize = k.getSize) :
    (k.switch d l).getSize = k.getSize :=
  k.records_switch (R := fun s s' => s'.size = s.size) hd hl

theorem getSize_use (i : Int) : (k.use i).getSize = k.getSize :=
  k.getSize_switch
    (fun _ _ h => congrArg Records.size (DenseFreedomKeeper.records_use h)) fun _ => rfl

theorem getSize_useVector (i : Int) (n : Nat) : (k.useVector i n).getSize = k.getSize :=
  k.getSize_switch
    (fun _ _ h => congrArg Records.size (DenseFreedomKeeper.records_useVector h))
    (ListFreedomKeeper.getSize_useVector i n)

theorem getSize_free (i : Int) : (k.free i).getSize = k.getSize := by
  refine k.getSize_switch (fun d d' h => ?_) fun _ => rfl
  rw [DenseFreedomKeeper.free] at h
  split at h
  · obtain rfl := Option.some.inj h
    rfl
  · cases h

theorem getSize_useVector64 {k' : FreedomKeeper} {i : Int} {n : Nat}
    (h : k.useVector64 i n = .ok k') : k'.getSize = k.getSize := by
  rcases k.useVector64_cases i n with ⟨-, hok⟩ | ⟨hdense, -, -, -, hle, hok⟩ | ⟨-, herror⟩ |
    ⟨-, herror⟩
  · obtain rfl := Except.ok.inj (h.symm.trans hok)
    exact k.getSize_useVector i n
  · obtain rfl := Except.ok.inj (h.symm.trans hok)
    exact (if_pos hdense).trans (if_pos hdense).symm
  · cases h.symm.trans herror
  · cases h.symm.trans herror

theorem getSize_freeVector (i : Int) (n : Nat) : (k.freeVector i n).getSize = k.getSize := by
  refine k.getSize_switch (fun d d' h => ?_) (ListFreedomKeeper.getSize_freeVector i n)
  rw [DenseFreedomKeeper.freeVector] at h
  split at h
  · obtain rfl := Option.some.inj h
    rfl
  · cases h

end FreedomKeeper

/-! ## Sizes of the columns -/

namespace Field

/-- The length of its vector. -/
def size (f : Field) : Nat :=
  match f.column with
  | .monostate => 0
  | .vector _ vs => vs.length

theorem size_of_hasLength {f : Field} {n : Nat} (h : f.HasLength n) : f.size ≤ n := by
  obtain ⟨type, column, holds⟩ := f
  cases column with
  | monostate => exact Nat.zero_le n
  | vector ty vs => exact Nat.le_of_eq h

variable {n : Nat}

theorem size_resize {size : Nat} (hsize : size ≤ n) :
    Maintains (fun f : Field => f.size ≤ n) (resize size) :=
  maintains_resize fun f ty vs hcolumn hlen _ => by
    rw [Field.size, hcolumn]
    exact le_of_eq_of_le hlen hsize

theorem size_put {ty : Ty} {g : List ty.Storage → List ty.Storage}
    (hg : ∀ vs, (g vs).length = vs.length) :
    Maintains (fun f : Field => f.size ≤ n) (put ty g) :=
  maintains_put (fun f f' vs vs' hcolumn hcolumn' hlen hf => by
    simp only [size, hcolumn, hcolumn'] at hf ⊢
    exact le_of_eq_of_le hlen hf) hg

theorem maintains_getOwnStorage (ty : Ty) :
    Maintains (fun f : Field => f.size ≤ n) (getOwnStorage ty) := by
  intro f hf
  rw [after, getOwnStorage]
  cases f.column with
  | monostate => exact hf
  | vector ty' vs =>
      simp only
      by_cases hty : ty' = ty
      · rw [if_pos hty]
        exact hf
      · rw [if_neg hty]
        exact hf

end Field

/-! ## Tables -/

namespace Table

/-- Neither the keeper nor a column is larger than `n`. -/
structure Within (n : Nat) (t : Table) : Prop where
  getSize_le : t.freedom.getSize ≤ n
  size_le : ∀ e ∈ t.fields, e.2.size ≤ n

theorem within_create (n : Nat) : create.Within n :=
  ⟨Nat.zero_le n, fun _ he => absurd he List.not_mem_nil⟩

variable {n : Nat}

theorem Within.freedom {t : Table} (h : t.Within n) {k : FreedomKeeper}
    (hk : k.getSize ≤ n) : Within n { t with freedom := k } := ⟨hk, h.size_le⟩

theorem maintains_withField {α : Type} {m : EStateM Exn Field α} (fieldId : FieldId)
    (hm : Maintains (fun f : Field => f.size ≤ n) m) :
    Maintains (Within n) (withField fieldId m) := by
  intro t ht
  obtain hsame | ⟨f, hfind, hafter⟩ := after_withField fieldId m t
  · rw [hsame]
    exact ht
  · rw [hafter]
    exact ⟨ht.getSize_le, forall_mem_assign (P := fun f : Field => f.size ≤ n) ht.size_le
      fieldId (hm f (ht.size_le _ (mem_of_find hfind)))⟩

theorem size_resizeAll {size : Nat} (hsize : size ≤ n) {fields : List (FieldId × Field)}
    (h : ∀ e ∈ fields, e.2.size ≤ n) : ∀ e ∈ (resizeAll size fields).1, e.2.size ≤ n := by
  induction fields with
  | nil => exact h
  | cons e fields ih =>
      obtain ⟨fieldId, f⟩ := e
      obtain ⟨hf, hfields⟩ := List.forall_mem_cons.mp h
      rw [resizeAll]
      cases hrun : Field.resize size f with
      | ok u f' =>
          exact List.forall_mem_cons.mpr
            ⟨(Field.size_resize hsize).ok hf hrun, ih hfields⟩
      | error e f' =>
          exact List.forall_mem_cons.mpr
            ⟨(Field.size_resize hsize).error hf hrun, hfields⟩

theorem maintains_resizeFields {size : Nat} (hsize : size ≤ n) :
    Maintains (Within n) (resizeFields size) := by
  intro t ht
  have hresized : Within n { t with fields := (resizeAll size t.fields).1 } :=
    ⟨ht.getSize_le, size_resizeAll hsize ht.size_le⟩
  rw [after, resizeFields, get_bind_run]
  cases (resizeAll size t.fields).2 with
  | none => exact hresized
  | some e => exact hresized

theorem getSize_pushBackUntil_le {recordId : Int} (hlt : recordId < n) {k : FreedomKeeper}
    (hk : k.getSize ≤ n) : (pushBackUntil recordId k).getSize ≤ n := by
  by_cases hgrow : (k.getSize : Int) ≤ recordId
  · have hsize : (pushBackUntil recordId k).getSize = max k.getSize (recordId + 1).toNat :=
      congrArg Records.size (records_pushBackUntil hgrow)
    omega
  · rw [pushBackUntil, show (recordId + 1 - k.getSize).toNat = 0 by omega]
    exact hk

theorem maintains_insertRecord {recordId : Int} (hlt : recordId < n) :
    Maintains (Within n) (insertRecord recordId) := by
  refine maintains_get_bind fun t => ?_
  have huse : Maintains (Within n)
      (modify fun t => { t with freedom := t.freedom.use recordId } : EStateM Exn Table Unit) :=
    maintains_modify fun t ht => ht.freedom (by
      rw [FreedomKeeper.getSize_use]
      exact ht.getSize_le)
  by_cases hgrow : recordId ≥ t.freedom.getSize
  · rw [if_pos hgrow]
    refine maintains_guard_bind ?_
    refine maintains_bind (maintains_resizeFields (by omega)) fun _ => ?_
    refine maintains_bind (maintains_modify fun t ht => ?_) fun _ => huse
    exact ht.freedom (getSize_pushBackUntil_le hlt ht.getSize_le)
  · rw [if_neg hgrow]
    exact maintains_guard_bind huse

theorem maintains_insertRecords {recordId : Int} {size : Nat}
    (hend : size ≠ 0 → recordId + size ≤ n) :
    Maintains (Within n) (insertRecords recordId size) := by
  induction size generalizing recordId with
  | zero => exact maintains_pure ()
  | succ size ih =>
      have hend := hend (Nat.succ_ne_zero size)
      exact maintains_bind (maintains_insertRecord (by omega)) fun _ => ih fun _ => by omega

theorem maintains_useVector (recordId : RecordId) (size : Nat) :
    Maintains (Within n) (useVector recordId size) := by
  intro t ht
  rw [after, useVector]
  cases huse : t.freedom.useVector64 recordId size with
  | ok freedom =>
      refine ht.freedom ?_
      rw [FreedomKeeper.getSize_useVector64 _ huse]
      exact ht.getSize_le
  | error e => exact ht

theorem within_insertVector {t : Table} (ht : t.Within n) {recordId : Int} {size : Nat}
    (hend : t.freedom.isFreeVector recordId size = true → recordId + size ≤ n) :
    (after (insertVector recordId size) t).Within n := by
  cases hfree : t.freedom.isFreeVector recordId size with
  | false =>
      rw [after, insertVector, get_bind_run, when_pos hfree]
      exact ht
  | true =>
      have hend := hend hfree
      rw [after, insertVector, get_bind_run, when_neg (by rw [hfree]; exact Bool.noConfusion),
        pure_bind_run]
      by_cases hlast : recordId = t.freedom.getSize
      · rw [if_pos hlast, modify_bind_run, get_bind_run]
        have hword : word (t.freedom.getSize + size) ≤ t.freedom.getSize + size :=
          word_le (by omega)
        have hsize : (t.freedom.resize (word (t.freedom.getSize + size)).toNat).getSize ≤ n := by
          have hle := ht.getSize_le
          rw [FreedomKeeper.getSize_resize]
          omega
        exact maintains_bind (maintains_resizeFields hsize)
          (fun _ => maintains_useVector recordId size) _ (ht.freedom hsize)
      · rw [if_neg hlast]
        exact maintains_insertRecords (fun _ => hend) t ht

theorem maintains_deleteRecord (recordId : RecordId) :
    Maintains (Within n) (deleteRecord recordId) :=
  maintains_get_bind fun _ => maintains_guard_bind <| maintains_modify fun t ht =>
    ht.freedom (by
      rw [FreedomKeeper.getSize_free]
      exact ht.getSize_le)

theorem maintains_deleteVector (recordId : RecordId) (size : Nat) :
    Maintains (Within n) (deleteVector recordId size) :=
  maintains_get_bind fun _ => maintains_guard_bind <| maintains_modify fun t ht =>
    ht.freedom (by
      rw [FreedomKeeper.getSize_freeVector]
      exact ht.getSize_le)

theorem maintains_addField (name : Bytes) (type : FieldType) :
    Maintains (Within n) (addField name type) := by
  refine maintains_get_bind fun _ => maintains_guard_bind (maintains_guard_bind ?_)
  refine maintains_bind (maintains_modify fun t ht => ⟨ht.getSize_le, ht.size_le⟩) fun _ => ?_
  intro t ht
  rw [after, get_bind_run]
  cases hcreate : Field.create type t.freedom.getSize with
  | error e => exact ht
  | ok f =>
      exact ⟨ht.getSize_le, forall_mem_tryEmplace (P := fun f : Field => f.size ≤ n) ht.size_le _
        (Nat.le_trans (Field.size_of_hasLength (Field.create_ok hcreate).1) ht.getSize_le)⟩

theorem maintains_dropField (fieldId : FieldId) : Maintains (Within n) (dropField fieldId) :=
  maintains_get_bind fun _ => maintains_guard_bind <| maintains_modify fun _ ht =>
    ⟨ht.getSize_le, fun e he => ht.size_le e (List.mem_of_mem_filter he)⟩

theorem maintains_renameFieldOf (fieldId : FieldId) (name : Bytes) :
    Maintains (Within n) (Database.renameFieldOf fieldId name) :=
  maintains_get_bind fun _ => maintains_guard_bind <| maintains_guard_bind <|
    maintains_modify fun _ ht => ⟨ht.getSize_le, ht.size_le⟩

theorem maintains_checkRecordId (recordId : RecordId) :
    Maintains (Within n) (checkRecordId recordId) :=
  maintains_get_bind fun _ => maintains_when (maintains_throw _)

theorem maintains_update (ty : Ty) (recordId : RecordId) (fieldId : FieldId) (value : ty.Arg) :
    Maintains (Within n) (update ty recordId fieldId value) :=
  maintains_bind (maintains_withField fieldId (maintains_pure ())) fun _ =>
    maintains_bind (maintains_checkRecordId recordId) fun _ =>
      maintains_withField fieldId (Field.size_put fun _ => List.length_set)

theorem maintains_setVector (ty : Ty) (recordId : RecordId) (fieldId : FieldId)
    (values : List ty.Storage) :
    Maintains (Within n) (withField fieldId (Field.setVector ty recordId values)) :=
  maintains_withField fieldId (Field.size_put fun _ => length_copyN _ _ _)

theorem maintains_setPart (ty : Ty) (recordId : Nat) (fieldId : FieldId) (first : Bytes) :
    Maintains (Within n) (withField fieldId (Field.setPart ty recordId first)) :=
  maintains_withField fieldId (Field.size_put fun _ => List.length_modify _ _ _)

theorem maintains_updateVector (ty : Ty) (recordId : RecordId) (fieldId : FieldId)
    (values : List ty.Storage) : Maintains (Within n) (updateVector ty recordId fieldId values) :=
  maintains_bind (maintains_withField fieldId (maintains_pure ())) fun _ =>
    maintains_ite (maintains_pure ()) <|
      maintains_bind (maintains_checkRecordId recordId) fun _ =>
        maintains_bind (maintains_checkRecordId _) fun _ =>
          maintains_setVector ty recordId fieldId values

theorem maintains_getOwnStorage (ty : Ty) (fieldId : FieldId) :
    Maintains (Within n) (getOwnStorage ty fieldId) :=
  maintains_get_bind fun _ =>
    maintains_bind (maintains_withField fieldId (Field.maintains_getOwnStorage ty)) fun _ =>
      maintains_pure _

end Table

/-! ## Databases -/

namespace Database

/-- The maximum is that one, and no table has a place for more. -/
structure Limited (maxRecordId : RecordId) (db : Database) : Prop where
  maxRecordId_eq : db.maxRecordId = maxRecordId
  within : ∀ e ∈ db.tables, e.2.Within (maxRecordId + 1).toNat

variable {M : Int}

theorem limited_create : (create M).Limited M := ⟨rfl, fun _ he => absurd he List.not_mem_nil⟩

theorem Limited.assign {db : Database} (h : db.Limited M) (tableId : TableId) {t : Table}
    (ht : t.Within (M + 1).toNat) :
    Limited M { db with tables := Containers.assign db.tables tableId t } :=
  ⟨h.maxRecordId_eq, forall_mem_assign (P := Table.Within _) h.within tableId ht⟩

theorem limited_withTable {α : Type} {tableId : TableId} {m : EStateM Exn Table α} {db : Database}
    (h : db.Limited M)
    (hm : ∀ t, find db.tables tableId = some t → t.Within (M + 1).toNat →
      (after m t).Within (M + 1).toNat) : (after (withTable tableId m) db).Limited M := by
  cases hfind : find db.tables tableId with
  | none =>
      rw [after, withTable, hfind]
      exact h
  | some t =>
      rw [after_withTable hfind]
      exact h.assign tableId (hm t hfind (h.within _ (mem_of_find hfind)))

theorem maintains_withTable {α : Type} {tableId : TableId} {m : EStateM Exn Table α}
    (hm : Maintains (Table.Within (M + 1).toNat) m) : Maintains (Limited M) (withTable tableId m) :=
  fun _ h => limited_withTable h fun t _ ht => hm t ht

theorem maintains_checkIdentifier (message : String) (name : Bytes) :
    Maintains (Limited M) (checkIdentifier message name) :=
  maintains_when (maintains_throw _)

theorem maintains_createTable (name : Bytes) : Maintains (Limited M) (createTable name) := by
  refine maintains_bind (maintains_checkIdentifier _ _) fun _ => maintains_get_bind fun _ =>
    maintains_guard_bind (maintains_guard_bind ?_)
  refine maintains_bind (maintains_modify fun _ h => ⟨h.maxRecordId_eq, h.within⟩) fun _ =>
    maintains_modify fun _ h => ⟨h.maxRecordId_eq, ?_⟩
  exact forall_mem_tryEmplace (P := Table.Within _) h.within _ (Table.within_create _)

/-- All but an insertion of a vector. -/
theorem maintains_call (hM : 0 ≤ M) {op : Op} (hop : ∀ t r size, op ≠ .insertVector t r size) :
    Maintains (Limited M) (call op) := by
  cases op with
  | createTable name => exact maintains_createTable name
  | dropTable t =>
      exact maintains_get_bind fun _ => maintains_guard_bind <| maintains_modify fun _ h =>
        ⟨h.maxRecordId_eq, fun e he => h.within e (List.mem_of_mem_filter he)⟩
  | renameTable t name =>
      exact maintains_bind (maintains_checkIdentifier _ _) fun _ => maintains_get_bind fun _ =>
        maintains_guard_bind <| maintains_bind (maintains_withTable (maintains_pure ())) fun _ =>
          maintains_modify fun _ h => ⟨h.maxRecordId_eq, h.within⟩
  | addField t name type =>
      exact maintains_bind (maintains_checkIdentifier _ _) fun _ =>
        maintains_withTable (Table.maintains_addField name type)
  | dropField t f => exact maintains_withTable (Table.maintains_dropField f)
  | renameField t f name =>
      exact maintains_bind (maintains_checkIdentifier _ _) fun _ =>
        maintains_withTable (Table.maintains_renameFieldOf f name)
  | insertInto t r =>
      intro db h
      rw [call, insertInto, after, get_bind_run, h.maxRecordId_eq]
      by_cases hout : r < 0 ∨ (M ≥ 0 ∧ r > M)
      · rw [when_pos hout]
        exact h
      · rw [when_neg hout, pure_bind_run]
        have hle : r ≤ M := Int.not_lt.mp fun hlt => hout (.inr ⟨hM, hlt⟩)
        have hlt : r < ((M + 1).toNat : Int) := by
          rw [Int.toNat_of_nonneg (by omega)]
          exact Int.lt_add_one_of_le hle
        exact maintains_withTable (Table.maintains_insertRecord hlt) db h
  | insertVector t r size => exact absurd rfl (hop t r size)
  | deleteFrom t r => exact maintains_withTable (Table.maintains_deleteRecord r)
  | deleteVector t r size => exact maintains_withTable (Table.maintains_deleteVector r size)
  | update ty t r f v => exact maintains_withTable (Table.maintains_update ty r f v)
  | updateVector ty t r f vs => exact maintains_withTable (Table.maintains_updateVector ty r f vs)
  | _ => exact maintains_pure ()

/-- Whether a vector of records that passes both comparisons ends where the last record may
be. Of anything else, nothing is asked. -/
def FitsLimit (db : Database) : Op → Prop
  | .insertVector tableId recordId size =>
      recordId < db.maxRecordId → size < db.maxRecordId →
        ∀ t, find db.tables tableId = some t → t.freedom.isFreeVector recordId size = true →
          recordId + size ≤ db.maxRecordId + 1
  | _ => True

theorem limited_insertVector {db : Database} (hM : 0 ≤ M) (h : db.Limited M) {tableId : TableId}
    {recordId : RecordId} {size : Nat}
    (hfits : db.FitsLimit (.insertVector tableId recordId size)) :
    (after (insertVector tableId recordId size) db).Limited M := by
  rw [FitsLimit, h.maxRecordId_eq] at hfits
  rw [insertVector, after, get_bind_run, h.maxRecordId_eq]
  by_cases hout : M ≥ 0 ∧ ¬(recordId < M ∧ size < M)
  · rw [when_pos hout]
    exact h
  · rw [when_neg hout, pure_bind_run]
    obtain ⟨hfirst, hsize⟩ := not_not.mp fun hnot => hout ⟨hM, hnot⟩
    refine limited_withTable h fun t hfind ht => Table.within_insertVector ht fun hfree => ?_
    have hend : recordId + size ≤ M + 1 := hfits hfirst hsize t hfind hfree
    rw [Int.toNat_of_nonneg (by omega)]
    exact hend

theorem limited_call {db : Database} (hM : 0 ≤ M) (h : db.Limited M) {op : Op}
    (hfits : db.FitsLimit op) : (after (call op) db).Limited M := by
  cases op with
  | insertVector t r size => exact limited_insertVector hM h hfits
  | _ => exact maintains_call hM (fun _ _ _ hop => by cases hop) db h

theorem maintains_ownStorage (ty : Ty) (tableId : TableId) (fieldId : FieldId) :
    Maintains (Limited M) (asWritable.ownStorage ty tableId fieldId) :=
  maintains_withTable (Table.maintains_getOwnStorage ty fieldId)

theorem limited_storeOwn {db : Database} (h : db.Limited M) (ty : Ty) (tableId : TableId)
    (fieldId : FieldId) (recordId : Nat) (values : List ty.Storage) :
    (storeOwn ty tableId fieldId recordId values db).Limited M :=
  maintains_withTable (Table.maintains_setVector ty recordId fieldId values) db h

theorem limited_storePart {db : Database} (h : db.Limited M) (ty : Ty) (tableId : TableId)
    (fieldId : FieldId) (recordId : Nat) (first : Bytes) :
    (storePart ty tableId fieldId recordId first db).Limited M :=
  maintains_withTable (Table.maintains_setPart ty recordId fieldId first) db h

end Database

/-! ## Replays -/

namespace Replay

variable {P : Database → Prop}

/-- What is true of the tables. -/
abbrev Tables (P : Database → Prop) (t : Replay Database) : Prop := P t.writable

theorem maintains_untouched {α : Type} {m : Play Database α} (h : Keeps Untouched m) :
    Maintains (Tables P) m := by
  intro t ht
  rw [Tables, show (after m t).writable = t.writable from h t]
  exact ht

theorem maintains_tell {α : Type} {m : EStateM Exn Database α} (h : Maintains P m) :
    Maintains (Tables P) (tell m) := by
  intro t ht
  rw [show after (tell m) t = t.withWritable (after m t.writable) from after_onPart m t]
  exact h t.writable ht

theorem maintains_read {α β : Type} {m : Play Database α} {f : α → Play Database β}
    (hm : Keeps Untouched m) (hf : ∀ a, Maintains (Tables P) (f a)) :
    Maintains (Tables P) (m >>= f) := maintains_bind (maintains_untouched hm) hf

/-- A replay of anything but an insertion of a vector maintains what the calls maintain. -/
theorem maintains_perform {operation : Operation} (hinsert : operation ≠ .insertVector)
    (hcall : ∀ {op : Op}, (∀ t r size, op ≠ .insertVector t r size) →
      Maintains P (Database.asWritable.call op))
    (hown : ∀ ty tableId fieldId, Maintains P (Database.asWritable.ownStorage ty tableId fieldId))
    (hstore : ∀ ty tableId fieldId recordId values db, P db →
      P (Database.asWritable.storeOwn ty tableId fieldId recordId values db))
    (hpart : ∀ ty tableId fieldId recordId first db, P db →
      P (Database.asWritable.storePart ty tableId fieldId recordId first db)) :
    Maintains (Tables P) (perform Database.asWritable operation) := by
  have hop : ∀ {op : Op}, (∀ t r size, op ≠ .insertVector t r size) →
      Maintains (Tables P) (tell (Database.asWritable.call op)) := fun h => maintains_tell (hcall h)
  have hset : ∀ {α : Type} {g : α → Replay Database → Context} {m : Play Database α}
      {f : Unit → Play Database Unit}, Keeps Untouched m → Maintains (Tables P) (f ()) →
      Maintains (Tables P) (m >>= fun a => (modify fun t => t.withContext (g a t)) >>= f) :=
    fun hm hf => maintains_read hm fun _ => maintains_read (untouched_withContext _) fun _ => hf
  have hupdate : ∀ ty, Maintains (Tables P) (performUpdate Database.asWritable ty) := fun ty =>
    maintains_read (untouched.readMethod ty.kind) fun _ => maintains_get_bind fun _ =>
      hop fun _ _ _ h => (by cases h)
  cases operation with
  | createTable =>
      exact maintains_read untouched.safeReadString fun _ => hop fun _ _ _ h => (by cases h)
  | dropTable => exact maintains_read (untouched.buffer _) fun _ => hop fun _ _ _ h => (by cases h)
  | renameTable =>
      exact maintains_read (untouched.buffer _) fun _ => maintains_read untouched.safeReadString
        fun _ => hop fun _ _ _ h => (by cases h)
  | addField =>
      exact maintains_read (untouched.buffer _) fun _ => maintains_read untouched.safeReadString
        fun _ => maintains_read untouched.readType fun _ => hop fun _ _ _ h => (by cases h)
  | dropField =>
      exact maintains_read (untouched.buffer _) fun _ => maintains_read (untouched.buffer _)
        fun _ => hop fun _ _ _ h => (by cases h)
  | renameField =>
      exact maintains_read (untouched.buffer _) fun _ => maintains_read (untouched.buffer _)
        fun _ => maintains_read untouched.safeReadString fun _ => hop fun _ _ _ h => (by cases h)
  | insertInto =>
      exact maintains_read (untouched.buffer _) fun _ => maintains_read (untouched.buffer _)
        fun _ => maintains_bind (hop fun _ _ _ h => (by cases h)) fun _ =>
          maintains_read (untouched_withContext _) fun _ =>
            maintains_untouched (untouched_withContext _)
  | deleteFrom =>
      exact maintains_read (untouched.buffer _) fun _ => maintains_read (untouched.buffer _)
        fun _ => hop fun _ _ _ h => (by cases h)
  | insertVector => exact absurd rfl hinsert
  | deleteVector =>
      exact maintains_read (untouched.buffer _) fun _ => maintains_read (untouched.buffer _)
        fun _ => maintains_read (untouched.buffer _) fun _ => hop fun _ _ _ h => (by cases h)
  | append =>
      exact maintains_read untouched_nextRecord fun _ => maintains_get_bind fun _ =>
        hop fun _ _ _ h => (by cases h)
  | update ty =>
      exact hset (untouched.buffer _) (hset (untouched.buffer _) (hset (untouched.buffer _)
        (hupdate ty)))
  | updateLast ty => exact hset (untouched.buffer _) (hupdate ty)
  | updateNext ty => exact maintains_read untouched_nextRecord fun _ => hupdate ty
  | updateVector ty =>
      rw [perform_updateVector]
      refine maintains_read untouched_readUpdateVector fun size => maintains_ite (maintains_pure ())
        (maintains_bind ?_ fun capacity => maintains_read (untouched.readVector ty.kind size)
          fun read => maintains_get_bind fun t => ?_)
      · exact maintains_get_bind fun t => maintains_guard_bind <|
          maintains_bind (maintains_tell (hown ty _ _)) fun _ =>
            maintains_guard_bind (maintains_pure _)
      · refine maintains_bind (maintains_when (maintains_modify fun _ h => hstore _ _ _ _ _ _ h))
          fun _ => ?_
        cases read.2 with
        | some stop =>
            exact maintains_bind (maintains_when (maintains_modify fun _ h => hpart _ _ _ _ _ _ h))
              fun _ => maintains_throw stop.1
        | none => exact hop fun _ _ _ h => (by cases h)
  | custom =>
      exact maintains_read untouched.safeReadString fun _ => hop fun _ _ _ h => (by cases h)
  | comment =>
      exact maintains_read untouched.safeReadString fun _ => hop fun _ _ _ h => (by cases h)
  | timestamp => exact maintains_read (untouched.buffer _) fun _ => hop fun _ _ _ h => (by cases h)
  | validData =>
      show Maintains (Tables P) (tell (Database.asWritable.call .validData))
      exact hop fun _ _ _ h => (by cases h)
  | blob =>
      refine maintains_read (untouched.buffer _) fun size => maintains_get_bind fun t =>
        maintains_read (fun _ => rfl) fun _ => maintains_get_bind fun t => maintains_ite ?_ ?_
      · refine maintains_read ?_ fun _ => hop fun _ _ _ h => (by cases h)
        unfold readBlobData
        exact keeps_ite (untouched.buffer _) (keeps_pure untouched.refl _)
      · exact maintains_untouched (keeps_modify fun _ => rfl)

/-- Whether the vector of records that comes next, if one does, fits. -/
def FitsLimit (t : Replay Database) : Prop :=
  ∀ code t₁, buffer FileBuffer.readByte t = .ok code t₁ →
    Operation.ofCode code = some .insertVector → ∀ tableId recordId size t₂,
      readInsertVector t₁ = .ok (tableId, recordId, size) t₂ →
        t₂.writable.FitsLimit (.insertVector tableId recordId size)

variable {M : Int} {t : Replay Database}

theorem limited_performInsertVector (hM : 0 ≤ M) (h : t.writable.Limited M)
    (hfits : ∀ tableId recordId size t₁, readInsertVector t = .ok (tableId, recordId, size) t₁ →
      t₁.writable.FitsLimit (.insertVector tableId recordId size)) :
    (after (perform Database.asWritable .insertVector) t).writable.Limited M := by
  have huntouched := maintains_untouched (P := Database.Limited M) untouched_readInsertVector
  rw [perform_insertVector]
  cases hargs : readInsertVector t with
  | error e t₁ =>
      rw [after_error (bind_error hargs)]
      exact huntouched.error h hargs
  | ok args t₁ =>
      obtain ⟨tableId, recordId, size⟩ := args
      have hkept := Database.limited_insertVector hM (huntouched.ok h hargs)
        (hfits tableId recordId size t₁ hargs)
      rw [after, bind_ok hargs]
      simp only
      cases hrun : Database.asWritable.call (.insertVector tableId recordId size) t₁.writable with
      | ok u db =>
          rw [bind_ok (tell_ok hrun)]
          exact after_ok (m := Database.insertVector tableId recordId size) hrun ▸ hkept
      | error e db =>
          rw [bind_error (tell_error hrun)]
          exact after_error (m := Database.insertVector tableId recordId size) hrun ▸ hkept

theorem limited_oneStep (hM : 0 ≤ M) (h : t.writable.Limited M) (hfits : t.FitsLimit) :
    (after (oneStep Database.asWritable) t).writable.Limited M := by
  have hread := maintains_untouched (P := Database.Limited M)
    (untouched.buffer FileBuffer.readByte)
  rw [oneStep, after]
  cases hbyte : buffer FileBuffer.readByte t with
  | error e t₁ =>
      rw [bind_error hbyte]
      exact hread.error h hbyte
  | ok code t₁ =>
      have h₁ : t₁.writable.Limited M := hread.ok h hbyte
      rw [bind_ok hbyte]
      cases hop : Operation.ofCode code with
      | none => exact h₁
      | some operation =>
          by_cases hinsert : operation = .insertVector
          · subst hinsert
            exact limited_performInsertVector hM h₁ (hfits code t₁ hbyte hop)
          · exact maintains_perform hinsert (Database.maintains_call hM)
              Database.maintains_ownStorage
              (fun ty _ _ _ values _ hdb => Database.limited_storeOwn hdb ty _ _ _ values)
              (fun ty _ _ _ first _ hdb => Database.limited_storePart hdb ty _ _ _ first) t₁ h₁

end Replay

/-! ## Runs -/

namespace Database

/-- What may happen to a database: a call, an assignment through the own storage, or a step of
the replay of some journal. -/
inductive Event where
  | call (op : Op)
  | storeOwn (ty : Ty) (tableId : TableId) (fieldId : FieldId) (recordId : Nat)
      (values : List ty.Storage)
  | oneStep (j : Journal)

/-- The database after an event, which may have thrown. -/
def follow (db : Database) : Event → Database
  | .call op => after (call op) db
  | .storeOwn ty tableId fieldId recordId values =>
      storeOwn ty tableId fieldId recordId values db
  | .oneStep j => (after (Replay.oneStep asWritable) ⟨j, db⟩).writable

/-- Whether the vector of records that an event inserts, if it does, fits. -/
def EventFits (db : Database) : Event → Prop
  | .call op => db.FitsLimit op
  | .storeOwn .. => True
  | .oneStep j => Replay.FitsLimit ⟨j, db⟩

def EventsFit : Database → List Event → Prop
  | _, [] => True
  | db, event :: events => db.EventFits event ∧ EventsFit (db.follow event) events

/-- What a maximum record id is for. -/
structure RespectsLimit (M : RecordId) (db : Database) : Prop where
  used : ∀ tableId t, find db.tables tableId = some t →
    ∀ recordId, t.freedom.isUsed recordId = true → recordId ≤ M
  columns : ∀ tableId t, find db.tables tableId = some t →
    ∀ fieldId f, find t.fields fieldId = some f → f.size ≤ M + 1

/-- An insertion of a record behind the maximum, alone or in a vector. -/
def Exceeds (M : RecordId) : Op → Prop
  | .insertInto _ recordId => recordId > M
  | .insertVector _ recordId size => recordId + size > M + 1
  | _ => False

variable {M : Int}

theorem Limited.follow {db : Database} (hM : 0 ≤ M) (h : db.Limited M) {event : Event}
    (hfits : db.EventFits event) : (db.follow event).Limited M := by
  cases event with
  | call op => exact limited_call hM h hfits
  | storeOwn ty tableId fieldId recordId values => exact limited_storeOwn h ty _ _ _ values
  | oneStep j => exact Replay.limited_oneStep (t := ⟨j, db⟩) hM h hfits

theorem Limited.followAll {db : Database} (hM : 0 ≤ M) (h : db.Limited M) {events : List Event}
    (hfits : db.EventsFit events) : (events.foldl Database.follow db).Limited M := by
  induction events generalizing db with
  | nil => exact h
  | cons event events ih => exact ih (h.follow hM hfits.1) hfits.2

theorem Limited.respects {db : Database} (hM : 0 ≤ M) (h : db.Limited M) : db.RespectsLimit M := by
  have hwithin : ∀ tableId t, find db.tables tableId = some t → t.Within (M + 1).toNat :=
    fun _ _ hfind => h.within _ (mem_of_find hfind)
  refine ⟨fun tableId t hfind r hused => ?_, fun tableId t hfind fieldId f hfield => ?_⟩
  · have hlt := (FreedomKeeper.lt_of_isUsed hused).2
    have hle := (hwithin tableId t hfind).getSize_le
    show r ≤ (M : Int)
    omega
  · have hle := (hwithin tableId t hfind).size_le _ (mem_of_find hfield)
    show (f.size : Int) ≤ M + 1
    simp only at hle
    omega

/-- What would exceed the limit is refused, where vectors fit. -/
theorem Limited.refuses {db : Database} (hM : 0 ≤ M) (h : db.Limited M) {op : Op}
    (hexceeds : Exceeds M op) (hfits : db.FitsLimit op) : ∃ e, call op db = .error e db := by
  cases op with
  | insertInto tableId r =>
      rw [call, insertInto, get_bind_run, h.maxRecordId_eq,
        when_pos (show r < 0 ∨ (M ≥ 0 ∧ r > M) from .inr ⟨hM, hexceeds⟩)]
      exact ⟨_, rfl⟩
  | insertVector tableId r size =>
      rw [FitsLimit, h.maxRecordId_eq] at hfits
      rw [call, insertVector, get_bind_run, h.maxRecordId_eq]
      by_cases hout : M ≥ 0 ∧ ¬(r < M ∧ size < M)
      · rw [when_pos hout]
        exact ⟨_, rfl⟩
      · rw [when_neg hout, pure_bind_run, withTable]
        obtain ⟨hfirst, hsize⟩ := not_not.mp fun hnot => hout ⟨hM, hnot⟩
        cases hfind : find db.tables tableId with
        | none => exact ⟨_, rfl⟩
        | some t =>
            cases hfree : t.freedom.isFreeVector r size with
            | true => exact absurd (hfits hfirst hsize t hfind hfree) (Int.not_le.mpr hexceeds)
            | false =>
                have hrun : ∃ e, Table.insertVector r size t = .error e t := by
                  rw [Table.insertVector, get_bind_run, when_pos hfree]
                  exact ⟨_, rfl⟩
                obtain ⟨e, hrun⟩ := hrun
                simp only [hrun, assign_self hfind]
                exact ⟨e, rfl⟩
  | _ => exact absurd hexceeds id

/-- In a run whose vectors of records fit, no record behind the maximum is ever used, no column
is longer than it may be, and an insertion that would exceed the limit throws and changes
nothing. -/
theorem limit_respected {M : RecordId} (hM : 0 ≤ M) (events : List Event)
    (hfits : (create M).EventsFit events) :
    (events.foldl follow (create M)).RespectsLimit M ∧
      ∀ op, Exceeds M op → (events.foldl follow (create M)).FitsLimit op →
        ∃ e, call op (events.foldl follow (create M))
          = .error e (events.foldl follow (create M)) := by
  have h : (events.foldl follow (create M)).Limited M := limited_create.followAll hM hfits
  exact ⟨h.respects hM, fun op hexceeds hop => h.refuses hM hexceeds hop⟩

theorem limit_respected_lastRecord :
    let events : List Event := [.call (.createTable [0x74]), .call (.insertVector 1 2 9)]
    (events.foldl follow (create 10)).RespectsLimit 10 ∧
      ∀ op, Exceeds 10 op → (events.foldl follow (create 10)).FitsLimit op →
        ∃ e, call op (events.foldl follow (create 10))
          = .error e (events.foldl follow (create 10)) :=
  limit_respected (M := 10) (by decide) [.call (.createTable [0x74]), .call (.insertVector 1 2 9)]
    ⟨trivial, fun _ _ _ _ _ => by decide, trivial⟩

/-- Nine records from record 9 on, with a maximum of 10. -/
theorem limit_exceeded :
    ¬ ∀ (M : RecordId) (events : List Event), 0 ≤ M →
      (events.foldl follow (create M)).RespectsLimit M ∧
        ∀ op, Exceeds M op → ∃ e, call op (events.foldl follow (create M))
          = .error e (events.foldl follow (create M)) := by
  intro hall
  have hrespects := (hall 10 [.call (.createTable [0x74]), .call (.insertVector 1 9 9)]
    (by decide)).1
  have hused : (find ([Event.call (.createTable [0x74]), .call (.insertVector 1 9 9)].foldl
      follow (create 10)).tables 1).map (·.freedom.isUsed 17) = some true := by decide +kernel
  obtain ⟨t, hfind, hlast⟩ := Option.map_eq_some_iff.mp hused
  exact absurd (hrespects.used 1 t hfind 17 hlast) (by decide)

end Database

end Joedb
