import Joedb.Compiled.Soundness

/-!
# Changes that are heard

A replay makes the changes that were made, with the same functions, but it looks
at them first: an id must be below the size of the journal and not be in use, a
vector must be smaller than the journal, and a vector that is deleted must pass for
used. The functions that write do not look. A change that passes is heard as it was
made.

A record that is new was found by the keeper, and the replay is told where. What
was heard under a limit is heard under a larger one.
-/

namespace Joedb.Compiled

open ByteFile Containers StateExcept

/-! ## One table -/

namespace Storage

variable {st : Storage}

theorem newRecord_insertRecord (h : st.Sound) (nameSpace : String) {tableId : TableId} {op : Op}
    {st' : Storage} (hrun : newRecord tableId st = .ok op st') :
    op = .insertInto tableId st.freedom.getFreeRecord.1 ∧ 0 ≤ st.freedom.getFreeRecord.1 ∧
      Database.insertRecord nameSpace st.freedom.getFreeRecord.1 st = .ok () st' := by
  obtain ⟨us, hus⟩ := h.orders
  obtain ⟨⟨hlo, -⟩, hunused⟩ := hus.getFreeRecord
  have hfree : st.freedom.isUsed st.freedom.getFreeRecord.1 = false := by
    rw [Records.call] at hunused
    split at hunused
    · exact hunused
    · exact hunused
  rw [newRecord, get_bind_run] at hrun
  obtain ⟨hend, hrun⟩ := guard_bind_eq_ok.mp hrun
  obtain ⟨rfl, rfl⟩ := EStateM.Result.ok.inj hrun
  refine ⟨rfl, hlo, ?_⟩
  have hwhere := hus.getFreeRecord_eq
  obtain ⟨r, hr⟩ := Int.eq_ofNat_of_zero_le hlo
  rw [hr] at hfree hwhere hend ⊢
  rw [insertRecord_eq hfree (by omega)]
  congr 2
  obtain ⟨hlt, hk⟩ | ⟨heq, hk⟩ := hwhere
  · have hsame := resize_of_getSize h
    rw [if_neg (Nat.not_le.mpr (Int.ofNat_lt.mp hlt)), hk]
    exact hsame.symm
  · have hr' : r = st.freedom.getSize := Int.ofNat_inj.mp heq
    have hsize : (st.freedom.resize (r + 1)).getSize = r + 1 :=
      (getSize_resize st (r + 1)).trans (by omega)
    have htwice : (st.freedom.resize (r + 1)).resize (r + 1) = st.freedom.resize (r + 1) :=
      FreedomKeeper.resize_of_le (Nat.le_of_eq hsize.symm)
    rw [if_pos (Nat.le_of_eq hr'.symm), hk, ← hr']
    show _ = Storage.resize (st.freedom.resize (r + 1)).getSize _
    rw [hsize, Storage.resize, Storage.resize, htwice]

/-- A new vector is resized for, and inserted. -/
theorem newVector_eq {tableId : TableId} {size : Nat} (h : st.Sound)
    (hfits : st.freedom.getSize + size < 2 ^ 63) :
    newVector tableId size st = (do
      Database.insertRecords st.freedom.getSize size
      pure (Op.insertVector tableId st.freedom.getSize size)) st := by
  have hfits' : (st.freedom.getSize : Int) + size < 2 ^ 63 := by omega
  have hinsert : Database.insertRecords st.freedom.getSize size st
      = internalVectorInsert st.freedom.getSize size
          (st.resize (st.freedom.getSize + size)) := by
    rw [insertRecords_eq hfits']
    by_cases hsize : size = 0
    · subst hsize
      rw [if_neg (by omega), Nat.add_zero, resize_of_getSize h]
    · rw [if_pos (by omega)]
      rfl
  rw [newVector, get_bind_run, bind_ok (checkEnd_of_fits hfits'), modify_bind_run]
  cases hrun : Database.insertRecords st.freedom.getSize size st with
  | ok u st' => rw [bind_ok hrun, bind_ok (hinsert.symm.trans hrun)]
  | error e st' => rw [bind_error hrun, bind_error (hinsert.symm.trans hrun)]

theorem newVector_fits {tableId : TableId} {size : Nat} {op : Op} {st' : Storage}
    (hrun : newVector tableId size st = .ok op st') : st.freedom.getSize + size < 2 ^ 63 := by
  obtain ⟨hfits, -⟩ | ⟨e, hthrown⟩ := checkEnd_cases st.freedom.getSize size st
  · omega
  · rw [newVector, get_bind_run, bind_error hthrown] at hrun
    cases hrun

theorem newVector_insertRecords (h : st.Sound) {tableId : TableId} {size : Nat} {op : Op}
    {st' : Storage} (hrun : newVector tableId size st = .ok op st') :
    op = .insertVector tableId st.freedom.getSize size ∧
      Database.insertRecords st.freedom.getSize size st = .ok () st' := by
  rw [newVector_eq h (newVector_fits hrun)] at hrun
  obtain ⟨_, st₁, hinsert, hpure⟩ := bind_eq_ok hrun
  obtain ⟨rfl, rfl⟩ := EStateM.Result.ok.inj hpure
  exact ⟨rfl, hinsert⟩

end Storage

/-! ## The database -/

namespace Database

variable {db : Database}

/-- Every table is. -/
def Sound (db : Database) : Prop := ∀ t ∈ db.tables, t.2.Sound

/-- While a journal of so many bytes is replayed. -/
def within (db : Database) (size : Nat) : Database := { db with maxRecordId := size }

theorem onTable_ok {α : Type} {tableId : TableId} {absent : EStateM Exn Database α}
    {m : EStateM Exn Storage α} {st st' : Storage} {a : α}
    (hfind : find db.tables tableId = some st) (h : m st = .ok a st') :
    onTable tableId absent m db = .ok a { db with tables := assign db.tables tableId st' } := by
  rw [onTable, hfind]
  simp only [h]

theorem onTable_eq_ok {α : Type} {tableId : TableId} {absent : EStateM Exn Database α}
    {m : EStateM Exn Storage α} {st : Storage} {db' : Database} {a : α}
    (hfind : find db.tables tableId = some st)
    (h : onTable tableId absent m db = .ok a db') :
    ∃ st', m st = .ok a st' ∧ db' = { db with tables := assign db.tables tableId st' } := by
  rw [onTable, hfind] at h
  simp only [] at h
  cases hm : m st with
  | ok a' st' =>
      rw [hm] at h
      obtain ⟨rfl, rfl⟩ := EStateM.Result.ok.inj h
      exact ⟨st', rfl, rfl⟩
  | error e st' =>
      rw [hm] at h
      cases h

theorem onField_of_has {st : Storage} {ty : Ty} {fieldId : FieldId} (h : st.Has ty fieldId)
    (m : EStateM Exn Storage Unit) : onField ty fieldId m st = m st := by
  rw [onField, get_bind_run, when_pos (show ∃ c ∈ find st.columns fieldId, c.ty = ty from h)]

theorem insertInto_ok {tableId : TableId} {recordId : RecordId} {st st' : Storage}
    (hfind : find db.tables tableId = some st) (hlo : 0 ≤ recordId)
    (hhi : recordId < db.maxRecordId)
    (h : insertRecord db.nameSpace recordId st = .ok () st') :
    insertInto tableId recordId db
      = .ok () { db with tables := assign db.tables tableId st' } := by
  rw [insertInto, get_bind_run, when_neg, pure_bind_run]
  · exact onTable_ok hfind h
  · rintro (hneg | ⟨-, hbig⟩)
    · exact absurd hneg (Int.not_lt.mpr hlo)
    · exact absurd hbig (Int.not_le.mpr hhi)

theorem insertVector_ok {tableId : TableId} {recordId : RecordId} {size : Nat} {st st' : Storage}
    (hfind : find db.tables tableId = some st) (hlo : 0 ≤ recordId)
    (hhi : recordId < db.maxRecordId) (hsize : word size < db.maxRecordId)
    (h : insertRecords recordId size st = .ok () st') :
    insertVector tableId recordId size db
      = .ok () { db with tables := assign db.tables tableId st' } := by
  rw [insertVector, get_bind_run, when_neg, pure_bind_run]
  · exact onTable_ok hfind h
  · rintro (hneg | ⟨-, hbig | hbig⟩)
    · exact absurd hneg (Int.not_lt.mpr hlo)
    · exact absurd hbig (Int.not_le.mpr hhi)
    · exact absurd hbig (Int.not_le.mpr hsize)

end Database

/-! ## Vectors of values -/

namespace Storage

variable {st : Storage}

theorem put_nil (ty : Ty) (recordId : Nat) (c : Column) :
    c.put ty (copyN · recordId ([] : List ty.Storage)) = c := by
  rw [Column.put]
  by_cases heq : c.ty = ty
  · subst heq
    rw [dif_pos rfl]
    rfl
  · rw [dif_neg heq]

theorem write_nil (ty : Ty) (fieldId : FieldId) (recordId : Nat) (st : Storage) :
    st.write ty fieldId recordId [] = st := by
  have hcolumns : (st.columns.map fun c =>
      if c.1 = fieldId then (c.1, c.2.put ty (copyN · recordId ([] : List ty.Storage))) else c)
        = st.columns := by
    refine (List.map_congr_left fun c _ => ?_).trans (List.map_id _)
    rw [put_nil]
    split <;> rfl
  rw [write, hcolumns]

theorem trigger_idle (fieldId : FieldId) {g : Index → Index × Option Exn}
    (hg : ∀ ix, g ix = (ix, none)) (ixs : List Index) :
    Index.trigger fieldId g ixs = (ixs, none) := by
  induction ixs with
  | nil => rfl
  | cons ix ixs ih =>
      rw [Index.trigger, hg, ih]
      split <;> rfl

/-- An update that went through looked at the records, and wrote. -/
theorem internalUpdateVector_eq_ok {ty : Ty} {recordId : RecordId} {fieldId : FieldId}
    {values : List ty.Storage} {st' : Storage}
    (h : internalUpdateVector ty recordId fieldId values st = .ok () st') :
    st.freedom.isUsedVector recordId values.length = true ∧
      (values.length = 0 → st' = st) := by
  rw [internalUpdateVector, get_bind_run] at h
  obtain ⟨hused, h⟩ := guard_bind_eq_ok.mp h
  rw [modify_bind_run] at h
  refine ⟨Bool.of_not_eq_false hused, fun hempty => ?_⟩
  obtain rfl := List.length_eq_zero_iff.mp hempty
  rw [write_nil, triggerIndexes, get_bind_run,
    trigger_idle fieldId (g := fun ix => (ix.removeAll recordId _).addAll st.columns recordId _)
      fun ix => rfl] at h
  exact (EStateM.Result.ok.inj h).2.symm

theorem find_write (ty : Ty) (fieldId : FieldId) (recordId : Nat) (values : List ty.Storage) :
    find (st.write ty fieldId recordId values).columns fieldId
      = (find st.columns fieldId).map (·.put ty (copyN · recordId values)) := by
  obtain ⟨name, singleRow, columns, indexes, freedom⟩ := st
  rw [write]
  induction columns with
  | nil => rfl
  | cons c columns ih =>
      obtain ⟨f, c⟩ := c
      rw [List.map_cons]
      by_cases hf : f = fieldId
      · rw [if_pos hf, find, if_pos hf.symm, find, if_pos hf.symm]
        rfl
      · rw [if_neg hf, find, if_neg fun h => hf h.symm, find, if_neg fun h => hf h.symm]
        exact ih

theorem has_write {ty : Ty} {fieldId : FieldId} (h : st.Has ty fieldId) (recordId : Nat)
    (values : List ty.Storage) : (st.write ty fieldId recordId values).Has ty fieldId := by
  obtain ⟨c, hc, rfl⟩ := h
  refine ⟨c.put c.ty (copyN · recordId values), ?_, ?_⟩
  · rw [find_write, show find st.columns fieldId = some c from hc]
    rfl
  · rw [Column.put, dif_pos rfl]

end Storage

namespace Change

open Compiled.Database

variable {db : Database} {c : Change}

/-- What a replay of so many bytes looks at, before it makes a change. -/
def Passes (size : Nat) (st : Storage) : Change → Prop
  | new _ => st.freedom.getFreeRecord.1 < size
  | insert _ recordId => recordId < size ∧ st.freedom.isUsed recordId = false
  | newVector _ n => st.freedom.getSize < size ∧ n < size
  | deleteVector _ recordId n => st.freedom.isUsedVector recordId n = true
  | _ => True

/-- The storage that is written into is there, or there is nothing to write. -/
theorem updateVector_hear {st st' : Storage} {ty : Ty} {t : TableId} {r : RecordId} {f : FieldId}
    {vs : List ty.Storage} (hfind : find db.tables t = some st) (hst : st.Sound)
    (hhas : st.Has ty f)
    (h : Storage.internalUpdateVector ty r f vs (st.write ty f r.toNat vs) = .ok () st') :
    asWritable.hear (.updateVector ty t r f vs) db
      = .ok () { db with tables := assign db.tables t st' } := by
  obtain ⟨hused, hidle⟩ := Storage.internalUpdateVector_eq_ok h
  rw [Writable.hear_updateVector]
  by_cases hempty : vs.length = 0
  · obtain rfl := List.length_eq_zero_iff.mp hempty
    rw [when_neg (not_not_intro hempty), hidle hempty, Storage.write_nil, assign_self hfind]
    rfl
  · obtain ⟨hlo, hend, -⟩ := FreedomKeeper.isUsedVector_sound
      (show st.freedom.isUsedVector r vs.length = true from hused)
    obtain ⟨c, hc, hty⟩ := hhas
    have hlen : c.values.length = st.freedom.getSize := hst.columns _ (mem_of_find hc)
    have hown : asWritable.ownStorage ty t f db = .ok (some st.freedom.getSize) db := by
      show ownStorage ty t f db = _
      rw [ownStorage, hfind]
      simp only [Option.bind_eq_bind, Option.bind_some, show find st.columns f = some c from hc]
      rw [if_pos ⟨hty, by omega⟩]
    have hstore : asWritable.storeOwn ty t f r.toNat vs db
        = { db with tables := assign db.tables t (st.write ty f r.toNat vs) } := by
      show storeOwn ty t f r.toNat vs db = _
      rw [storeOwn, hfind]
    rw [when_pos hempty, Writable.hearVector, bind_ok hown, when_neg, pure_bind_run,
      when_pos (show (some st.freedom.getSize).isSome from rfl), modify_bind_run, hstore]
    · have hupdate := (onField_of_has (Storage.has_write ⟨c, hc, hty⟩ r.toNat vs)
        (Storage.internalUpdateVector ty r f vs)).trans h
      refine (onTable_ok (find_assign hfind _) hupdate).trans ?_
      simp only [assign_assign]
    · rintro (hneg | ⟨n, hn, hout⟩)
      · exact absurd hneg (Int.not_lt.mpr hlo)
      · obtain rfl := Option.some.inj hn
        rcases hout with hout | hout
        · exact absurd (Int.le_trans (Int.le_add_of_nonneg_right (Int.natCast_nonneg _)) hend)
            (Int.not_le.mpr hout)
        · exact absurd (Int.le_sub_left_of_add_le hend) (Int.not_le.mpr hout)

/-- A change that passes is heard as it was made. -/
theorem perform_hear {st : Storage} {size : Nat} {op : Op} {db' : Database} (hsound : db.Sound)
    (hfind : find db.tables c.tableId = some st) (hhas : ∀ f ∈ c.field, st.Has f.1 f.2)
    (hpasses : c.Passes size st) (h : c.perform db = .ok op db') :
    asWritable.hear op (db.within size) = .ok () (db'.within size) := by
  have hst : st.Sound := hsound _ (mem_of_find hfind)
  obtain ⟨st', hrun, rfl⟩ := onTable_eq_ok hfind h
  have hfind' : find (db.within size).tables c.tableId = some st := hfind
  cases c with
  | new t =>
      obtain ⟨rfl, hlo, hinsert⟩ := Storage.newRecord_insertRecord hst db.nameSpace hrun
      exact insertInto_ok hfind' hlo hpasses hinsert
  | insert t r =>
      obtain ⟨hsmall, rfl, rfl⟩ := Storage.insertAt_eq_ok hrun
      exact insertInto_ok hfind' (Int.natCast_nonneg r) (Int.ofNat_lt.mpr hpasses.1)
        (Storage.insertRecord_eq hpasses.2 hsmall)
  | newVector t n =>
      obtain ⟨rfl, hinsert⟩ := Storage.newVector_insertRecords hst hrun
      exact insertVector_ok hfind' (Int.natCast_nonneg _) (Int.ofNat_lt.mpr hpasses.1)
        (Int.lt_of_le_of_lt (word_le (Int.natCast_nonneg n)) (Int.ofNat_lt.mpr hpasses.2)) hinsert
  | delete t r =>
      obtain ⟨_, st₁, hdelete, hpure⟩ := bind_eq_ok hrun
      obtain ⟨rfl, rfl⟩ := EStateM.Result.ok.inj hpure
      exact onTable_ok hfind' hdelete
  | deleteVector t r n =>
      obtain ⟨_, st₁, hdelete, hpure⟩ := bind_eq_ok hrun
      obtain ⟨rfl, rfl⟩ := EStateM.Result.ok.inj hpure
      refine onTable_ok hfind' ?_
      rw [deleteVectorOf, get_bind_run, when_neg (by rw [show _ = true from hpasses]; decide),
        pure_bind_run]
      exact hdelete
  | set ty t r f v =>
      obtain ⟨_, st₁, hupdate, hpure⟩ := bind_eq_ok hrun
      obtain ⟨rfl, rfl⟩ := EStateM.Result.ok.inj hpure
      exact onTable_ok hfind' ((onField_of_has (hhas _ rfl) _).trans hupdate)
  | updateVector ty t r f vs =>
      obtain ⟨_, st₁, hwrite, hrest⟩ := bind_eq_ok hrun
      obtain rfl := (EStateM.Result.ok.inj hwrite).2
      obtain ⟨_, st₂, hupdate, hpure⟩ := bind_eq_ok hrest
      obtain ⟨rfl, rfl⟩ := EStateM.Result.ok.inj hpure
      exact updateVector_hear hfind' hst (hhas _ rfl) hupdate

end Change

/-! ## What a replay keeps -/

namespace Database

variable {db db' : Database}

theorem onTable_sound {tableId : TableId} {m : EStateM Exn Storage Unit}
    (hm : ∀ st st', st.Sound → m st = .ok () st' → st'.Sound) (h : db.Sound)
    (hrun : onTable tableId (pure ()) m db = .ok () db') : db'.Sound := by
  cases hfind : find db.tables tableId with
  | none =>
      rw [onTable, hfind] at hrun
      exact (EStateM.Result.ok.inj hrun).2 ▸ h
  | some st =>
      obtain ⟨st', hst', rfl⟩ := onTable_eq_ok hfind hrun
      exact forall_mem_assign h tableId (hm st st' (h _ (mem_of_find hfind)) hst')

theorem onField_sound {ty : Ty} {fieldId : FieldId} {m : EStateM Exn Storage Unit}
    (hm : ∀ st st', st.Sound → m st = .ok () st' → st'.Sound) {st st' : Storage} (h : st.Sound)
    (hrun : onField ty fieldId m st = .ok () st') : st'.Sound := by
  rw [onField, get_bind_run] at hrun
  by_cases hfield : ∃ c ∈ find st.columns fieldId, c.ty = ty
  · rw [when_pos hfield] at hrun
    exact hm st st' h hrun
  · rw [when_neg hfield] at hrun
    exact (EStateM.Result.ok.inj hrun).2 ▸ h

theorem call_sound {op : Op} (h : db.Sound) (hrun : call op db = .ok () db') : db'.Sound := by
  cases op with
  | insertInto t r =>
      rw [call, insertInto, get_bind_run] at hrun
      obtain ⟨hout, hrun⟩ := exception_bind_eq_ok.mp hrun
      refine onTable_sound (fun st st' hst hm => hst.insertRecord ?_ hm) h hrun
      exact Int.not_lt.mp fun hneg => hout (.inl hneg)
  | insertVector t r n =>
      rw [call, insertVector, get_bind_run] at hrun
      obtain ⟨hout, hrun⟩ := exception_bind_eq_ok.mp hrun
      refine onTable_sound (fun st st' hst hm => hst.insertRecords ?_ hm) h hrun
      exact Int.not_lt.mp fun hneg => hout (.inl hneg)
  | deleteFrom t r => exact onTable_sound (fun st st' hst hm => hst.internalDelete hm) h hrun
  | deleteVector t r n =>
      refine onTable_sound (fun st st' hst hm => ?_) h hrun
      rw [deleteVectorOf, get_bind_run] at hm
      obtain ⟨hused, hm⟩ := guard_bind_eq_ok.mp hm
      exact hst.deleteRecords hm
  | update ty t r f v =>
      exact onTable_sound (fun st st' => onField_sound fun st st' hst hm =>
        hst.internalUpdate hm) h hrun
  | updateVector ty t r f vs =>
      exact onTable_sound (fun st st' => onField_sound fun st st' hst hm =>
        hst.internalUpdateVector hm) h hrun
  | _ =>
      obtain rfl := (EStateM.Result.ok.inj hrun).2
      exact h

theorem storeOwn_sound (h : db.Sound) (ty : Ty) (tableId : TableId) (fieldId : FieldId)
    (recordId : Nat) (values : List ty.Storage) :
    (storeOwn ty tableId fieldId recordId values db).Sound := by
  rw [storeOwn]
  cases hfind : find db.tables tableId with
  | none => exact h
  | some st =>
      exact forall_mem_assign h tableId ((h _ (mem_of_find hfind)).write ty fieldId _ _)

/-- With a limit at least as large, the same calls go through. -/
theorem call_within {op : Op} {size : Nat} (hlimit : db.maxRecordId ≠ 0)
    (hsize : db.maxRecordId ≤ size) (hrun : call op db = .ok () db') :
    call op (db.within size) = .ok () (db'.within size) ∧
      db'.maxRecordId = db.maxRecordId := by
  have honTable : ∀ {t : TableId} {m : EStateM Exn Storage Unit},
      onTable t (pure ()) m db = .ok () db' →
        onTable t (pure ()) m (db.within size) = .ok () (db'.within size) ∧
          db'.maxRecordId = db.maxRecordId := by
    intro t m h
    cases hfind : find db.tables t with
    | none =>
        rw [onTable, hfind] at h
        obtain rfl := (EStateM.Result.ok.inj h).2
        rw [onTable, show find (db.within size).tables t = none from hfind]
        exact ⟨rfl, rfl⟩
    | some st =>
        obtain ⟨st', hm, rfl⟩ := onTable_eq_ok hfind h
        exact ⟨onTable_ok (show find (db.within size).tables t = some st from hfind) hm, rfl⟩
  cases op with
  | insertInto t r =>
      rw [call, insertInto, get_bind_run] at hrun ⊢
      obtain ⟨hout, hrun⟩ := exception_bind_eq_ok.mp hrun
      rw [when_neg, pure_bind_run]
      · exact honTable hrun
      · rintro (hneg | ⟨-, hbig⟩)
        · exact hout (.inl hneg)
        · exact hout (.inr ⟨hlimit, Int.le_trans (Int.ofNat_le.mpr hsize) hbig⟩)
  | insertVector t r n =>
      rw [call, insertVector, get_bind_run] at hrun ⊢
      obtain ⟨hout, hrun⟩ := exception_bind_eq_ok.mp hrun
      rw [when_neg, pure_bind_run]
      · exact honTable hrun
      · rintro (hneg | ⟨-, hbig | hbig⟩)
        · exact hout (.inl hneg)
        · exact hout (.inr ⟨hlimit, .inl (Int.le_trans (Int.ofNat_le.mpr hsize) hbig)⟩)
        · exact hout (.inr ⟨hlimit, .inr (Int.le_trans (Int.ofNat_le.mpr hsize) hbig)⟩)
  | deleteFrom t r => exact honTable hrun
  | deleteVector t r n => exact honTable hrun
  | update ty t r f v => exact honTable hrun
  | updateVector ty t r f vs => exact honTable hrun
  | _ =>
      obtain rfl := (EStateM.Result.ok.inj hrun).2
      exact ⟨rfl, rfl⟩

theorem within_storeOwn (ty : Ty) (tableId : TableId) (fieldId : FieldId) (recordId : Nat)
    (values : List ty.Storage) (db : Database) (size : Nat) :
    storeOwn ty tableId fieldId recordId values (db.within size)
      = (storeOwn ty tableId fieldId recordId values db).within size := by
  rw [storeOwn, storeOwn, show (db.within size).tables = db.tables from rfl]
  split <;> rfl

theorem storeOwn_limit (ty : Ty) (tableId : TableId) (fieldId : FieldId) (recordId : Nat)
    (values : List ty.Storage) (db : Database) :
    (storeOwn ty tableId fieldId recordId values db).maxRecordId = db.maxRecordId := by
  rw [storeOwn]
  split <;> rfl

/-- What was heard under a limit is heard under a larger one, and leaves the tables
in order. -/
theorem hear_within {op : Op} {size : Nat} (hlimit : db.maxRecordId ≠ 0)
    (hsize : db.maxRecordId ≤ size) (h : db.Sound)
    (hrun : asWritable.hear op db = .ok () db') :
    asWritable.hear op (db.within size) = .ok () (db'.within size) ∧
      db'.maxRecordId = db.maxRecordId ∧ db'.Sound := by
  have hcall : ∀ {o : Op} {d : Database}, d.maxRecordId = db.maxRecordId → d.Sound →
      call o d = .ok () db' →
        call o (d.within size) = .ok () (db'.within size) ∧
          db'.maxRecordId = db.maxRecordId ∧ db'.Sound := by
    intro o d hd hs ho
    obtain ⟨hwithin, hsame⟩ := call_within (hd ▸ hlimit) (hd ▸ hsize) ho
    exact ⟨hwithin, hsame.trans hd, call_sound hs ho⟩
  have hplain : (∀ d, asWritable.hear op d = call op d) →
      asWritable.hear op (db.within size) = .ok () (db'.within size) ∧
        db'.maxRecordId = db.maxRecordId ∧ db'.Sound := by
    intro heq
    rw [heq] at hrun ⊢
    exact hcall rfl h hrun
  cases op with
  | updateVector ty t r f vs =>
      rw [Writable.hear_updateVector] at hrun ⊢
      by_cases hempty : vs.length = 0
      · rw [when_neg (not_not_intro hempty)] at hrun ⊢
        obtain rfl := (EStateM.Result.ok.inj hrun).2
        exact ⟨rfl, rfl, h⟩
      · rw [when_pos hempty, Writable.hearVector] at hrun ⊢
        obtain ⟨capacity, db₁, hown, hrest⟩ := bind_eq_ok hrun
        obtain ⟨hcapacity, rfl⟩ := EStateM.Result.ok.inj hown
        have hown' : asWritable.ownStorage ty t f (db.within size)
            = .ok capacity (db.within size) := congrArg (EStateM.Result.ok · _) hcapacity
        rw [bind_ok hown']
        by_cases hout : r < 0 ∨ (∃ n ∈ capacity, r > n ∨ vs.length > n - r)
        · rw [when_pos hout] at hrest
          cases hrest
        · rw [when_neg hout, pure_bind_run] at hrest ⊢
          by_cases hsome : capacity.isSome = true
          · rw [when_pos hsome, modify_bind_run] at hrest ⊢
            rw [show asWritable.storeOwn ty t f r.toNat vs (db.within size) = _ from
              within_storeOwn ty t f r.toNat vs db size]
            exact hcall (o := .updateVector ty t r f vs) (storeOwn_limit ty t f r.toNat vs db)
              (storeOwn_sound h ty t f r.toNat vs) hrest
          · rw [when_neg hsome, pure_bind_run] at hrest ⊢
            exact hcall (o := .updateVector ty t r f vs) rfl h hrest
  | writeBlob data =>
      obtain rfl := (EStateM.Result.ok.inj hrun).2
      exact ⟨rfl, rfl, h⟩
  | _ => exact hplain fun d => rfl

theorem hearAll_within {ops : List Op} {size : Nat} (hlimit : db.maxRecordId ≠ 0)
    (hsize : db.maxRecordId ≤ size) (h : db.Sound)
    (hrun : asWritable.hearAll ops db = .ok () db') :
    asWritable.hearAll ops (db.within size) = .ok () (db'.within size) ∧
      db'.maxRecordId = db.maxRecordId ∧ db'.Sound := by
  induction ops generalizing db with
  | nil =>
      obtain rfl := (EStateM.Result.ok.inj hrun).2
      exact ⟨rfl, rfl, h⟩
  | cons op ops ih =>
      obtain ⟨_, db₁, hop, hops⟩ := bind_eq_ok hrun
      obtain ⟨hwithin, hsame, hsound⟩ := hear_within hlimit hsize h hop
      obtain ⟨hrest, hsame', hsound'⟩ := ih (hsame ▸ hlimit) (hsame ▸ hsize) hsound hops
      exact ⟨(bind_ok hwithin).trans hrest, hsame'.trans hsame, hsound'⟩

end Database

end Joedb.Compiled
