import Joedb.Interpreted.Atomicity
import Joedb.Interpreted.Names
import Joedb.Packing.Dumping

/-!
# Runs of records

What is dumped is played into a table that has the fields and no records, one run of used
records after the other. Behind the last run there is room for the next, because the old table
had room for all, and an update of used records goes through if the field has the type.
-/

namespace Joedb

open ByteFile Containers StateExcept

/-! ## Values -/

/-- What an update carries of a value: a `char` on its way through a `bool`. -/
def carried (v : Sigma Ty.Storage) : Sigma Ty.Storage := ⟨v.1, (v.1.toArg v.2).val⟩

/-! ## Columns -/

theorem Field.eq_of_column {f g : Field} (htype : f.type = g.type) (hcolumn : f.column = g.column) :
    f = g := by
  obtain ⟨type, column, holds⟩ := f
  obtain ⟨type', column', holds'⟩ := g
  obtain rfl : type = type' := htype
  obtain rfl : column = column' := hcolumn
  rfl

/-- How much a column can have is a matter of its type. -/
theorem Field.fits_iff (f : Field) (n : Nat) :
    f.fits n ↔ ∀ ty, Ty.ofTypeId f.type.typeId = some ty → n ≤ ty.maxSize := by
  obtain ⟨type, column, holds⟩ := f
  cases column with
  | monostate =>
      refine ⟨fun _ ty hty => ?_, fun _ => trivial⟩
      rw [← holds] at hty
      cases hty
  | vector ty vs =>
      have hty : Ty.ofTypeId type.typeId = some ty := holds.symm
      refine ⟨fun h ty' hty' => ?_, fun h => h ty hty⟩
      rw [hty] at hty'
      obtain rfl := Option.some.inj hty'
      exact h

namespace Table

theorem fits_iff (t : Table) (n : Nat) :
    t.Fits n ↔ ∀ type ∈ t.schema.types.map (·.2), ∀ ty, Ty.ofTypeId type.typeId = some ty →
      n ≤ ty.maxSize := by
  constructor
  · intro h type htype
    obtain ⟨_, htyped, rfl⟩ := List.mem_map.mp htype
    obtain ⟨e, he, rfl⟩ := List.mem_map.mp htyped
    exact (e.2.fits_iff n).mp (h e he)
  · intro h e he
    exact (e.2.fits_iff n).mpr
      (h _ (List.mem_map.mpr ⟨_, List.mem_map.mpr ⟨e, he, rfl⟩, rfl⟩))

/-- Behind all records that are used there is room. -/
theorem insertVector_run {t : Table} {recordId : Int} {size : Nat} (hlo : 0 ≤ recordId)
    (hsmall : recordId + size < 2 ^ 63) (hroom : ∀ x, recordId ≤ x → t.freedom.isUsed x = false)
    (hfits : t.Fits (recordId + size).toNat) :
    ∃ t', insertVector recordId size t = .ok () t' := by
  have hfree := FreedomKeeper.isFreeVector_of_unused (n := size) hlo hroom
  by_cases hend : recordId = t.freedom.getSize
  · rw [insertVector_end hfree hend hsmall]
    obtain ⟨fields, -, ⟨-, hok⟩ | ⟨hnot, -⟩⟩ := resizeFields_cases (t.freedom.getSize + size)
      { t with freedom := t.freedom.resize (t.freedom.getSize + size) }
    · rw [bind_ok hok]
      exact ⟨_, rfl⟩
    · exact absurd (Fits.mono (t := t) hfits (by omega)) hnot
  · rw [insertVector_before hfree hend]
    exact (insertRecords_ok_iff hlo hsmall fun x hx _ => hroom x hx).mpr (.inr (.inr hfits))

/-- Values that were put into a field, from a record on. -/
structure Stored (ty : Ty) (fieldId : FieldId) (r : Nat) (values : List ty.Storage)
    (t t' : Table) : Prop where
  sound : t'.Sound
  schema : t'.schema = t.schema
  freedom : t'.freedom = t.freedom
  value : ∀ id x, t'.value id x = if id = fieldId ∧ r ≤ x ∧ x < r + values.length
    then some ⟨ty, values.getD (x - r) ty.kind.default⟩ else t.value id x

section Stores

variable {t : Table} {ty : Ty} {fieldId : FieldId} {f : Field} {vs values : List ty.Storage}

theorem stored_assign (h : t.Sound) (hfield : find t.fields fieldId = some f)
    (hcolumn : f.column = .vector ty vs) {r : Nat} (hin : r + values.length ≤ t.freedom.getSize)
    {f' : Field} (htype : f'.type = f.type)
    (hcolumn' : f'.column = .vector ty (copyN vs r values)) :
    Stored ty fieldId r values t { t with fields := assign t.fields fieldId f' } := by
  have hlen := h.lengths _ (mem_of_find hfield)
  simp only [Field.HasLength, hcolumn] at hlen
  refine ⟨h.assignField hfield ?_, ?_, rfl, fun id x => ?_⟩
  · simp only [Field.HasLength, hcolumn', length_copyN, hlen]
  · rw [schema, schema, map_assign Field.type, htype]
    have hfound : find (t.fields.map fun e => (e.1, e.2.type)) fieldId = some f.type := by
      rw [find_map Field.type, hfield]
      rfl
    rw [assign_self hfound]
  · rw [Table.value, find_assign_eq]
    by_cases hid : id = fieldId
    · subst hid
      rw [if_pos rfl, hfield, Option.map_some, Option.bind_some, Field.value, hcolumn',
        Table.value, hfield, Option.bind_some, Field.value, hcolumn]
      simp only [List.getD_eq_getElem?_getD, getElem?_copyN, true_and]
      by_cases hx : r ≤ x ∧ x < r + values.length
      · rw [if_pos hx, if_pos ⟨hx.1, hx.2, by omega⟩]
      · rw [if_neg hx, if_neg fun h => hx ⟨h.1, h.2.1⟩]
    · rw [if_neg hid, if_neg fun h => hid h.1]
      rfl

/-- An update of a used record, of the type of the field. -/
theorem update_run (h : t.Sound) (hfield : find t.fields fieldId = some f)
    (hcolumn : f.column = .vector ty vs) {recordId : RecordId}
    (hused : t.freedom.isUsed recordId = true) (value : ty.Arg) :
    ∃ t', update ty recordId fieldId value t = .ok () t' ∧
      Stored ty fieldId recordId.toNat [value.val] t t' := by
  obtain ⟨f', hput, htype, hcolumn'⟩ :=
    withField_put (g := (·.set recordId.toNat value.val)) hfield hcolumn
  have hlt := FreedomKeeper.lt_of_isUsed hused
  refine ⟨_, ?_, stored_assign h hfield hcolumn (by rw [List.length_singleton]; omega) htype
    hcolumn'⟩
  rw [update, bind_ok (withField_pure_run hfield), bind_ok (checkRecordId_used hused)]
  exact hput

end Stores

end Table

/-! ## What is heard -/

namespace Database

variable {db : Database} {tableId : TableId} {t : Table}

theorem hear_insertVector_run (hmax : db.maxRecordId = -1) (hfind : find db.tables tableId = some t)
    {recordId : RecordId} {size : Nat} {t' : Table}
    (hrun : Table.insertVector recordId size t = .ok () t') :
    asWritable.hear (.insertVector tableId recordId size) db
      = .ok () { db with tables := assign db.tables tableId t' } := by
  show Database.insertVector tableId recordId size db = _
  rw [Database.insertVector, get_bind_run,
    when_neg (fun h => absurd h.1 (by rw [hmax]; decide))]
  exact withTable_run hfind hrun

theorem hear_insertInto_run (hmax : db.maxRecordId = -1) (hfind : find db.tables tableId = some t)
    {recordId : RecordId} (hlo : 0 ≤ recordId) {t' : Table}
    (hrun : Table.insertRecord recordId t = .ok () t') :
    asWritable.hear (.insertInto tableId recordId) db
      = .ok () { db with tables := assign db.tables tableId t' } := by
  show Database.insertInto tableId recordId db = _
  rw [Database.insertInto, get_bind_run, when_neg]
  · exact withTable_run hfind hrun
  · rintro (h | ⟨h, -⟩)
    · exact absurd hlo (Int.not_le.mpr h)
    · exact absurd h (by rw [hmax]; decide)

variable (tableId) in
/-- The reader finds room for the values, and the update finds them where they belong. -/
theorem updateVector_heard (h : t.Sound) {ty : Ty} {fieldId : FieldId} {f : Field}
    {vs : List ty.Storage} (hfield : find t.fields fieldId = some f)
    (hcolumn : f.column = .vector ty vs) {recordId : RecordId} {values : List ty.Storage}
    (hlen : values.length ≠ 0) (hupdates : t.Updates recordId values.length) :
    ∃ f', f'.type = f.type ∧ f'.column = .vector ty (copyN vs recordId.toNat values) ∧
      Table.updateVector ty recordId fieldId values t
        = .ok () { t with fields := assign t.fields fieldId f' } ∧
      ∀ {db : Database}, find db.tables tableId = some t →
        asWritable.hear (.updateVector ty tableId recordId fieldId values) db
          = .ok () { db with
            tables := assign db.tables tableId
              { t with fields := assign t.fields fieldId f' } } := by
  have hlo := (FreedomKeeper.lt_of_isUsed (hupdates hlen).1).1
  have hlast := (FreedomKeeper.lt_of_isUsed (hupdates hlen).2).2
  have hsize := h.lengths _ (mem_of_find hfield)
  simp only [Field.HasLength, hcolumn] at hsize
  obtain ⟨f₁, hput, htype₁, hcolumn₁⟩ :=
    Table.withField_put (g := (copyN · recordId.toNat values)) hfield hcolumn
  have hfield₁ : find (assign t.fields fieldId f₁) fieldId = some f₁ := find_assign hfield f₁
  obtain ⟨f', hrun', htype', hcolumn'⟩ := Table.updateVector_updates hfield hcolumn hlen hupdates
  obtain ⟨f₂, hrun, htype₂, hcolumn₂⟩ := Table.updateVector_updates
    (t := { t with fields := assign t.fields fieldId f₁ }) hfield₁ hcolumn₁ hlen hupdates
  rw [copyN_copyN] at hcolumn₂
  obtain rfl : f₂ = f' := Field.eq_of_column (htype₂.trans (htype₁.trans htype'.symm))
    (hcolumn₂.trans hcolumn'.symm)
  refine ⟨f₂, htype', hcolumn', hrun', fun {db} hfind => ?_⟩
  have hpointer : Table.getOwnStorage ty fieldId t = .ok (some t.freedom.getSize) t := by
    have hfieldPointer : Table.withField fieldId (Field.getOwnStorage ty) t = .ok true t := by
      rw [Table.withField, hfield]
      have hnonempty : vs.length ≠ 0 := by omega
      simp only [Field.getOwnStorage, hcolumn, if_true, hnonempty, ne_eq, not_false_eq_true,
        decide_true, assign_self hfield]
    rw [Table.getOwnStorage, get_bind_run, bind_ok hfieldPointer]
    rfl
  have hown : asWritable.ownStorage ty tableId fieldId db = .ok (some t.freedom.getSize) db := by
    show withTable tableId (Table.getOwnStorage ty fieldId) db = _
    rw [withTable_run hfind hpointer, assign_self hfind]
  have hstore : asWritable.storeOwn ty tableId fieldId recordId.toNat values db
      = { db with
          tables := assign db.tables tableId { t with fields := assign t.fields fieldId f₁ } } :=
    (after_withTable hfind).trans
      (congrArg (fun t => { db with tables := assign db.tables tableId t }) (after_ok hput))
  rw [Writable.hear_updateVector, when_pos hlen, Writable.hearVector, bind_ok hown, when_neg,
    pure_bind_run, when_pos (show (some t.freedom.getSize).isSome = true from rfl),
    modify_bind_run, hstore]
  · show Database.updateVector ty tableId recordId fieldId values _ = _
    rw [Database.updateVector, withTable_run (find_assign hfind _) hrun]
    simp only [assign_assign]
  · rintro (hneg | ⟨n, hn, hout⟩)
    · exact absurd hlo (Int.not_le.mpr hneg)
    · obtain rfl := Option.some.inj hn
      have hout : (t.freedom.getSize : Int) < recordId
          ∨ (t.freedom.getSize : Int) - recordId < values.length := hout
      omega

variable (tableId) in
/-- The values are where they were put. -/
theorem hear_updateVector_run (h : t.Sound) {ty : Ty} {fieldId : FieldId} {f : Field}
    {vs : List ty.Storage} (hfield : find t.fields fieldId = some f)
    (hcolumn : f.column = .vector ty vs) {recordId : RecordId} {values : List ty.Storage}
    (hlen : values.length ≠ 0) (hupdates : t.Updates recordId values.length) :
    ∃ t', Table.Stored ty fieldId recordId.toNat values t t' ∧
      ∀ {db : Database}, find db.tables tableId = some t →
        asWritable.hear (.updateVector ty tableId recordId fieldId values) db
          = .ok () { db with tables := assign db.tables tableId t' } := by
  obtain ⟨f', htype, hcolumn', -, hhear⟩ :=
    updateVector_heard tableId h hfield hcolumn hlen hupdates
  have hlo := (FreedomKeeper.lt_of_isUsed (hupdates hlen).1).1
  have hlast := (FreedomKeeper.lt_of_isUsed (hupdates hlen).2).2
  exact ⟨_, Table.stored_assign h hfield hcolumn (by omega) htype hcolumn', hhear⟩

end Database

namespace Dump

/-! ## Records -/

/-- The loop over unused records stops at a used one, or at the end. -/
theorem skipFree_spec (k : FreedomKeeper) (left r : Nat) :
    r ≤ skipFree k left r ∧ skipFree k left r ≤ r + left ∧
      (∀ x : Int, r ≤ x → x < skipFree k left r → k.isUsed x = false) ∧
      (skipFree k left r < r + left → k.isUsed (skipFree k left r) = true) := by
  induction left generalizing r with
  | zero => exact ⟨Nat.le_refl r, Nat.le_refl r, fun x _ _ => by rw [skipFree] at *; omega,
      fun h => absurd h (Nat.lt_irrefl r)⟩
  | succ left ih =>
      rw [skipFree]
      by_cases hused : k.isUsed r = true
      · rw [if_pos hused]
        exact ⟨Nat.le_refl r, Nat.le_add_right r _, fun x _ _ => by omega, fun _ => hused⟩
      · rw [if_neg hused]
        obtain ⟨hlo, hhi, hfree, hstop⟩ := ih (r + 1)
        refine ⟨by omega, by omega, fun x hx hlt => ?_, fun hlt => hstop (by omega)⟩
        by_cases heq : x = r
        · rw [heq]
          exact Bool.eq_false_iff.mpr hused
        · exact hfree x (by omega) hlt

/-- The records that the other loop counts are used. -/
theorem countUsed_spec (k : FreedomKeeper) (left r : Nat) :
    countUsed k left r ≤ left ∧
      (∀ x : Int, r ≤ x → x < r + countUsed k left r → k.isUsed x = true) ∧
      (0 < left → k.isUsed r = true → 0 < countUsed k left r) := by
  induction left generalizing r with
  | zero => exact ⟨Nat.le_refl 0, fun x _ _ => by rw [countUsed] at *; omega, fun h => by omega⟩
  | succ left ih =>
      rw [countUsed]
      by_cases hused : k.isUsed r = true
      · rw [if_pos hused]
        obtain ⟨hle, hall, -⟩ := ih (r + 1)
        refine ⟨by omega, fun x hx hlt => ?_, fun _ _ => Nat.succ_pos _⟩
        by_cases heq : x = r
        · rw [heq]
          exact hused
        · exact hall x (by omega) (by omega)
      · rw [if_neg hused]
        exact ⟨Nat.zero_le _, fun x _ _ => by omega, fun _ h => absurd h hused⟩

/-- A table of a schema, with the records of `k` below `r`. -/
structure Filled (k : FreedomKeeper) (s : TableSchema) (r : Nat) (t : Table) : Prop where
  sound : t.Sound
  schema : t.schema = s
  used : ∀ x : Int, t.freedom.isUsed x = (k.isUsed x && decide (x < r))

section Filling

variable {k : FreedomKeeper} {s : TableSchema}

theorem Filled.skip {r r' : Nat} {t : Table} (h : Filled k s r t) (hle : r ≤ r')
    (hfree : ∀ x : Int, r ≤ x → x < r' → k.isUsed x = false) : Filled k s r' t := by
  refine ⟨h.sound, h.schema, fun x => ?_⟩
  rw [h.used]
  by_cases hx : r ≤ x ∧ x < r'
  · rw [hfree x hx.1 hx.2]
    rfl
  · exact congrArg (k.isUsed x && ·) (decide_eq_decide.mpr (by omega))

/-- A run of used records. -/
theorem Filled.insertVector {r size : Nat} {t : Table} (h : Filled k s r t)
    (hsmall : r + size < 2 ^ 63) (hall : ∀ x : Int, r ≤ x → x < r + size → k.isUsed x = true)
    (hfits : t.Fits (r + size)) :
    ∃ t', Table.insertVector r size t = .ok () t' ∧ Filled k s (r + size) t' := by
  have hroom : ∀ x, (r : Int) ≤ x → t.freedom.isUsed x = false := fun x hx => by
    rw [h.used, decide_eq_false (by omega), Bool.and_false]
  have hfits' : t.Fits ((r : Int) + size).toNat := by
    rw [show ((r : Int) + size).toNat = r + size by omega]
    exact hfits
  have hsmall' : (r : Int) + size < 2 ^ 63 := by omega
  obtain ⟨t', hrun⟩ := Table.insertVector_run (Int.natCast_nonneg r) hsmall' hroom hfits'
  obtain ⟨-, hsame, hused⟩ := Table.insertVector_ok h.sound hrun
  refine ⟨t', hrun, hsame.sound, ((Table.insertVector_kept r size).ok hrun).1.trans h.schema,
    fun x => ?_⟩
  rw [hused hsmall']
  show (t.freedom.isUsed x || decide ((r : Int) ≤ x ∧ x < r + size)) = _
  rw [h.used]
  by_cases hx : (r : Int) ≤ x ∧ x < r + size
  · have hlt : x < (r + size : Nat) := by omega
    rw [hall x hx.1 hx.2, decide_eq_true hx, decide_eq_true hlt, Bool.or_true]
    rfl
  · rw [decide_eq_false hx, Bool.or_false]
    exact congrArg (k.isUsed x && ·) (decide_eq_decide.mpr (by omega))

theorem Filled.isUsed {r : Nat} {t : Table} (h : Filled k s r t) (hr : k.getSize ≤ r) :
    t.freedom.isUsed = k.isUsed := by
  funext x
  rw [h.used]
  cases hused : k.isUsed x with
  | false => rfl
  | true =>
      have hlt := (FreedomKeeper.lt_of_isUsed hused).2
      rw [decide_eq_true (by omega)]
      rfl

end Filling

end Dump

end Joedb
